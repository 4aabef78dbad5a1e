import EventSourcery.Registry
import EventSourcery.Runs
import Mathlib.Logic.Function.Basic

/-!
# Registration of event types

`EventRegistry` maps types to names and names to types. A type is added on demand, or when a
type or a name is looked up that is not there: then all classes below `Event` are gone through,
and those whose type and name are both new are added. The classes may be others at each call.
Collecting the fields of a type may raise, and by then the type is in both maps: it goes on to the
classes that fields are annotated with, also where these lead back to the type itself.
-/
namespace EventSourcery.EventRegistration
open Runs

/-- `__subclasses__` of a class, each with its own. -/
inductive Subclasses (T : Type) where
  | nil
  | cons (event : T) (own others : Subclasses T)

/-- A type hint of a class: another class or itself, `Annotated`, or neither. -/
inductive ClassHint (T : Type) where
  | type (cls : T)
  | annotated (metadata : List Metadata)
  | other

/-- The classes as a call finds them: those below `Event`, what names them (`__event_name__` may
be inherited), and what can be resolved of the annotations and fields of any class. Calls can be
nested as deep as the interpreter lets them. -/
structure Classes (T : Type) where
  subclasses : Subclasses T
  ownName : T → Option String
  moduleName : T → Option String
  qualname : T → String
  typeHints : T → Option (List (String × ClassHint T))
  modelFields : T → Option (List (String × List Metadata))
  recursionLimit : ℕ := 1000

/-- `event_name`, if the class can be named. -/
def Classes.eventName {T : Type} (classes : Classes T) (cls : T) : Option String :=
  let name := (classes.ownName cls).getD ""
  if name ≠ "" then some name
  else (classes.moduleName cls).map fun eventModule => eventModule ++ "." ++ classes.qualname cls

/-- What collecting the encrypted fields of a class can raise. -/
inductive CollectError where
  | unresolvedHints
  | recursionError
  deriving DecidableEq

inductive RegistryError (T : Type) where
  | duplicatedEvent
  | classModuleUnavailable
  | keyError
  | uncollected (event : T) (error : CollectError)
  | noModelFields (event : T)
  deriving DecidableEq

section Collecting
variable {T : Type}

/-- The encrypted fields that a field adds, by those of the class that it is annotated with. -/
def encryptedFieldsOf (nested : T → Except CollectError (List (String × Encrypted)))
    (field : String) : ClassHint T → Except CollectError (List (String × Encrypted))
  | .type cls => (nested cls).map fun fields => fields.map fun f => (field ++ "." ++ f.1, f.2)
  | .annotated metadata =>
      .ok ((metadata.findSome? Metadata.encrypted?).map fun config => (field, config)).toList
  | .other => .ok []

/-- `get_encrypted_fields`, with the depth that is left. -/
def Classes.getEncryptedFields (classes : Classes T) :
    ℕ → T → Except CollectError (List (String × Encrypted))
  | 0, _ => .error .recursionError
  | depth + 1, cls =>
      match classes.typeHints cls with
      | none => .error .unresolvedHints
      | some hints =>
          (hints.mapM fun hint =>
            encryptedFieldsOf (classes.getEncryptedFields depth) hint.1 hint.2).map List.flatten

/-- The annotations of a class lead on to no more classes than the depth allows for. -/
def Classes.ends (classes : Classes T) : ℕ → T → Bool
  | 0, _ => false
  | depth + 1, cls => (classes.typeHints cls).all fun hints => hints.all fun hint =>
      match hint.2 with
      | .type nested => classes.ends depth nested
      | _ => true

/-- A hint as a tree, where the hints of the class in it are one. -/
def ClassHint.unfold (nested : T → Except CollectError (List (String × Hint))) :
    ClassHint T → Except CollectError Hint
  | .type cls => (nested cls).map .type
  | .annotated metadata => .ok (.annotated metadata)
  | .other => .ok .other

/-- The hints of a class as a tree. -/
def Classes.unfold (classes : Classes T) : ℕ → T → Except CollectError (List (String × Hint))
  | 0, _ => .error .recursionError
  | depth + 1, cls =>
      match classes.typeHints cls with
      | none => .error .unresolvedHints
      | some hints => hints.mapM fun hint =>
          (hint.2.unfold (classes.unfold depth)).map fun tree => (hint.1, tree)

theorem encryptedFieldsOf_unfold {nested : T → Except CollectError (List (String × Hint))}
    {collected : T → Except CollectError (List (String × Encrypted))}
    (h : ∀ cls, collected cls = (nested cls).map EventSourcery.getEncryptedFields)
    (field : String) (hint : ClassHint T) :
    encryptedFieldsOf collected field hint =
      (hint.unfold nested).map (EventSourcery.encryptedFieldsOf field) := by
  cases hint with
  | type cls =>
    rw [encryptedFieldsOf, ClassHint.unfold, h]
    cases nested cls <;> rfl
  | annotated metadata => rfl
  | other => rfl

/-- What is collected of a class is what is collected of its hints as a tree. -/
theorem Classes.getEncryptedFields_eq (classes : Classes T) (depth : ℕ) (cls : T) :
    classes.getEncryptedFields depth cls =
      (classes.unfold depth cls).map EventSourcery.getEncryptedFields := by
  induction depth generalizing cls with
  | zero => rfl
  | succ depth ih =>
    rw [Classes.getEncryptedFields, Classes.unfold]
    cases classes.typeHints cls with
    | none => rfl
    | some hints =>
      dsimp only
      induction hints with
      | nil => rfl
      | cons hint hints ihHints =>
        rw [List.mapM_cons, List.mapM_cons, encryptedFieldsOf_unfold ih]
        cases hint.2.unfold (classes.unfold depth) with
        | error e => rfl
        | ok tree =>
          revert ihHints
          cases hints.mapM fun hint =>
            encryptedFieldsOf (classes.getEncryptedFields depth) hint.1 hint.2 with
          | error e =>
            cases hints.mapM fun hint => (hint.2.unfold (classes.unfold depth)).map
              fun tree => (hint.1, tree) with
            | error e' =>
              intro hsame
              exact hsame
            | ok trees =>
              intro hsame
              cases hsame
          | ok fields =>
            cases hints.mapM fun hint => (hint.2.unfold (classes.unfold depth)).map
              fun tree => (hint.1, tree) with
            | error e' =>
              intro hsame
              cases hsame
            | ok trees =>
              intro hsame
              have hfields : fields.flatten = EventSourcery.getEncryptedFields trees :=
                Except.ok.inj hsame
              change Except.ok (EventSourcery.encryptedFieldsOf hint.1 tree :: fields).flatten = _
              rw [List.flatten_cons, hfields]
              rfl

/-- What raises for a list raises for an element. -/
theorem exists_of_mapM_error {A B ε : Type} {f : A → Except ε B} {as : List A} {e : ε}
    (h : as.mapM f = .error e) : ∃ a ∈ as, f a = .error e := by
  induction as with
  | nil => cases h
  | cons a as ih =>
    rw [List.mapM_cons] at h
    cases hfirst : f a with
    | error e' =>
      rw [hfirst] at h
      cases h
      exact ⟨a, List.mem_cons_self, hfirst⟩
    | ok b =>
      rw [hfirst] at h
      cases hrest : as.mapM f with
      | error e' =>
        rw [hrest] at h
        cases h
        obtain ⟨a', ha', hraises⟩ := ih hrest
        exact ⟨a', List.mem_cons_of_mem _ ha', hraises⟩
      | ok bs =>
        rw [hrest] at h
        cases h

/-- Where the annotations come to an end, the depth is enough. -/
theorem Classes.not_recursionError {classes : Classes T} {depth : ℕ} {cls : T}
    (h : classes.ends depth cls) :
    classes.getEncryptedFields depth cls ≠ .error .recursionError := by
  induction depth generalizing cls with
  | zero => cases h
  | succ depth ih =>
    rw [Classes.getEncryptedFields]
    rw [Classes.ends] at h
    cases hhints : classes.typeHints cls with
    | none => simp
    | some hints =>
      rw [hhints] at h
      dsimp only
      intro hraises
      cases hall : hints.mapM fun hint =>
          encryptedFieldsOf (classes.getEncryptedFields depth) hint.1 hint.2 with
      | ok fields =>
        rw [hall] at hraises
        cases hraises
      | error e =>
        rw [hall] at hraises
        cases hraises
        obtain ⟨⟨field, hint⟩, hmem, hraises⟩ := exists_of_mapM_error hall
        have hends := List.all_eq_true.1 h _ hmem
        cases hint with
        | type nested =>
          apply ih hends
          dsimp only [encryptedFieldsOf] at hraises
          cases hnested : classes.getEncryptedFields depth nested with
          | ok fields =>
            rw [hnested] at hraises
            cases hraises
          | error e =>
            rw [hnested] at hraises
            cases hraises
            rfl
        | annotated metadata => cases hraises
        | other => cases hraises

end Collecting

structure Registry (T : Type) where
  typesToNames : T → Option String := fun _ => none
  namesToTypes : String → Option T := fun _ => none
  encryptedFields : T → Option (List (String × Encrypted)) := fun _ => none
  subjectFields : T → Option String := fun _ => none

namespace Registry
variable {T : Type} [DecidableEq T]

def setName (event : T) (name : String) (r : Registry T) : Registry T :=
  { r with
    typesToNames := Function.update r.typesToNames event (some name)
    namesToTypes := Function.update r.namesToTypes name (some event) }

def setEncryptedFields (event : T) (fields : List (String × Encrypted)) (r : Registry T) :
    Registry T :=
  { r with encryptedFields := Function.update r.encryptedFields event (some fields) }

def setSubjectField (event : T) (field : Option String) (r : Registry T) : Registry T :=
  match field with
  | none => r
  | some field => { r with subjectFields := Function.update r.subjectFields event (some field) }

end Registry

/-- Statements one after the other: what the first has done stays done where it raises. -/
def andThen {T A B : Type} (first : Except (RegistryError T) A × Registry T)
    (next : A → Registry T → Except (RegistryError T) B × Registry T) :
    Except (RegistryError T) B × Registry T :=
  match first with
  | (.error e, r) => (.error e, r)
  | (.ok a, r) => next a r

section Code
variable {T : Type} [DecidableEq T] (classes : Classes T)

def add (event : T) (r : Registry T) : Except (RegistryError T) Unit × Registry T :=
  if (r.typesToNames event).isSome then (.error .duplicatedEvent, r)
  else match classes.eventName event with
    | none => (.error .classModuleUnavailable, r)
    | some name =>
        if (r.namesToTypes name).isSome then (.error .duplicatedEvent, r)
        else
          let r := r.setName event name
          match classes.getEncryptedFields classes.recursionLimit event with
          | .error e => (.error (.uncollected event e), r)
          | .ok fields =>
              let r := r.setEncryptedFields event fields
              match classes.modelFields event with
              | none => (.error (.noModelFields event), r)
              | some modelFields =>
                  (.ok (), r.setSubjectField event (getDataSubjectFiled modelFields))

/-- One class of the loop in `_register_defined_events`. -/
def registerNew (event : T) (r : Registry T) : Except (RegistryError T) Unit × Registry T :=
  match classes.eventName event with
  | none => (.error .classModuleUnavailable, r)
  | some name =>
      if (r.typesToNames event).isNone ∧ (r.namesToTypes name).isNone then add classes event r
      else (.ok (), r)

/-- `_register_defined_events` -/
def registerDefinedEvents : Subclasses T → Registry T →
    Except (RegistryError T) Unit × Registry T
  | .nil, r => (.ok (), r)
  | .cons event own others, r =>
      andThen (registerNew classes event r) fun _ r =>
        andThen (registerDefinedEvents own r) fun _ r => registerDefinedEvents others r

/-- `EventRegistry()` -/
def create : Except (RegistryError T) Unit × Registry T :=
  registerDefinedEvents classes classes.subclasses {}

/-- What a lookup does first where the key is missing. -/
def registerMissing (missing : Bool) (r : Registry T) :
    Except (RegistryError T) Unit × Registry T :=
  if missing then registerDefinedEvents classes classes.subclasses r else (.ok (), r)

def typeForName (name : String) (r : Registry T) : Except (RegistryError T) T × Registry T :=
  andThen (registerMissing classes (r.namesToTypes name).isNone r) fun _ r =>
    ((r.namesToTypes name).elim (.error .keyError) .ok, r)

def nameForType (event : T) (r : Registry T) : Except (RegistryError T) String × Registry T :=
  andThen (registerMissing classes (r.typesToNames event).isNone r) fun _ r =>
    ((r.typesToNames event).elim (.error .keyError) .ok, r)

inductive Call (T : Type) where
  | add (event : T)
  | typeForName (name : String)
  | nameForType (event : T)

inductive Answer (T : Type) where
  | type (event : T)
  | name (name : String)

def step (r : Registry T) (i : Classes T × Call T) :
    Except (RegistryError T) (Answer T) × Registry T :=
  match i.2 with
  | .add event => andThen (add i.1 event r) fun _ r => (.ok (.type event), r)
  | .typeForName name => andThen (typeForName i.1 name r) fun event r => (.ok (.type event), r)
  | .nameForType event => andThen (nameForType i.1 event r) fun name r => (.ok (.name name), r)

end Code

/-! ## What a call does -/

/-- The outcomes of `add`: the type or its name is known, the type cannot be named, its encrypted
fields or its subject field cannot be collected, or it is added. -/
inductive Added {T : Type} [DecidableEq T] (classes : Classes T) (event : T) (r : Registry T) :
    Except (RegistryError T) Unit × Registry T → Prop
  | knownType (name : String) (htype : r.typesToNames event = some name) :
      Added classes event r (.error .duplicatedEvent, r)
  | knownName (name : String) (other : T) (htype : r.typesToNames event = none)
      (hname : classes.eventName event = some name) (hother : r.namesToTypes name = some other) :
      Added classes event r (.error .duplicatedEvent, r)
  | unnamed (htype : r.typesToNames event = none) (hname : classes.eventName event = none) :
      Added classes event r (.error .classModuleUnavailable, r)
  | uncollected (name : String) (e : CollectError) (htype : r.typesToNames event = none)
      (hname : classes.eventName event = some name) (hfree : r.namesToTypes name = none)
      (hfields : classes.getEncryptedFields classes.recursionLimit event = .error e) :
      Added classes event r (.error (.uncollected event e), r.setName event name)
  | fieldless (name : String) (fields : List (String × Encrypted))
      (htype : r.typesToNames event = none) (hname : classes.eventName event = some name)
      (hfree : r.namesToTypes name = none)
      (hfields : classes.getEncryptedFields classes.recursionLimit event = .ok fields)
      (hmodel : classes.modelFields event = none) :
      Added classes event r (.error (.noModelFields event),
        (r.setName event name).setEncryptedFields event fields)
  | added (name : String) (fields : List (String × Encrypted))
      (modelFields : List (String × List Metadata))
      (htype : r.typesToNames event = none) (hname : classes.eventName event = some name)
      (hfree : r.namesToTypes name = none)
      (hfields : classes.getEncryptedFields classes.recursionLimit event = .ok fields)
      (hmodel : classes.modelFields event = some modelFields) :
      Added classes event r (.ok (),
        ((r.setName event name).setEncryptedFields event fields).setSubjectField
          event (getDataSubjectFiled modelFields))

theorem added {T : Type} [DecidableEq T] (classes : Classes T) (event : T) (r : Registry T) :
    Added classes event r (add classes event r) := by
  unfold add
  cases htype : r.typesToNames event with
  | some name => exact .knownType name htype
  | none =>
    cases hname : classes.eventName event with
    | none => exact .unnamed htype hname
    | some name =>
      cases hfree : r.namesToTypes name with
      | some other => simpa [hfree] using Added.knownName name other htype hname hfree
      | none =>
        cases hfields : classes.getEncryptedFields classes.recursionLimit event with
        | error e => simpa [hfree] using Added.uncollected name e htype hname hfree hfields
        | ok fields =>
          cases hmodel : classes.modelFields event with
          | none => simpa [hfree] using Added.fieldless name fields htype hname hfree hfields hmodel
          | some modelFields =>
            simpa [hfree] using Added.added name fields modelFields htype hname hfree hfields hmodel

/-- A property that `add` has and that goes on from statement to statement. All calls have it. -/
structure Lifts {T : Type} [DecidableEq T] (classes : Classes T)
    (P : ∀ A : Type, Registry T → Except (RegistryError T) A × Registry T → Prop) : Prop where
  ok : ∀ A (a : A) r, P A r (.ok a, r)
  unnamed : ∀ r, P Unit r (.error .classModuleUnavailable, r)
  missing : ∀ A r, P A r (.error .keyError, r)
  add : ∀ event r, P Unit r (add classes event r)
  andThen : ∀ A B first (next : A → Registry T → Except (RegistryError T) B × Registry T) r,
    P A r first → (∀ a r', P B r' (next a r')) → P B r (andThen first next)

namespace Lifts
variable {T : Type} [DecidableEq T] {classes : Classes T}
  {P : ∀ A : Type, Registry T → Except (RegistryError T) A × Registry T → Prop}

theorem registerNew (h : Lifts classes P) (event : T) (r : Registry T) :
    P Unit r (registerNew classes event r) := by
  unfold EventRegistration.registerNew
  cases classes.eventName event with
  | none => exact h.unnamed r
  | some name =>
    by_cases hnew : (r.typesToNames event).isNone ∧ (r.namesToTypes name).isNone
    · simpa only [if_pos hnew] using h.add event r
    · simpa only [if_neg hnew] using h.ok Unit () r

theorem registerDefinedEvents (h : Lifts classes P) (events : Subclasses T) (r : Registry T) :
    P Unit r (registerDefinedEvents classes events r) := by
  induction events generalizing r with
  | nil => exact h.ok Unit () r
  | cons event own others ihOwn ihOthers =>
    refine h.andThen _ _ _ _ r (h.registerNew event r) fun _ r => ?_
    exact h.andThen _ _ _ _ r (ihOwn r) fun _ r => ihOthers r

theorem registerMissing (h : Lifts classes P) (missing : Bool) (r : Registry T) :
    P Unit r (registerMissing classes missing r) := by
  cases missing with
  | false => exact h.ok Unit () r
  | true => exact h.registerDefinedEvents classes.subclasses r

theorem elim (h : Lifts classes P) {A : Type} (found : Option A) (r : Registry T) :
    P A r (found.elim (.error .keyError) .ok, r) := by
  cases found with
  | none => exact h.missing A r
  | some a => exact h.ok A a r

theorem typeForName (h : Lifts classes P) (name : String) (r : Registry T) :
    P T r (typeForName classes name r) :=
  h.andThen _ _ _ _ r (h.registerMissing _ r) fun _ r => h.elim (r.namesToTypes name) r

theorem nameForType (h : Lifts classes P) (event : T) (r : Registry T) :
    P String r (nameForType classes event r) :=
  h.andThen _ _ _ _ r (h.registerMissing _ r) fun _ r => h.elim (r.typesToNames event) r

theorem step (h : Lifts classes P) (call : Call T) (r : Registry T) :
    P (Answer T) r (step r (classes, call)) := by
  cases call with
  | add event => exact h.andThen _ _ _ _ r (h.add event r) fun _ r => h.ok _ _ r
  | typeForName name => exact h.andThen _ _ _ _ r (h.typeForName name r) fun _ r => h.ok _ _ r
  | nameForType event => exact h.andThen _ _ _ _ r (h.nameForType event r) fun _ r => h.ok _ _ r

end Lifts

/-- What is registered stays registered, with the fields it has. -/
structure Kept {T : Type} (r r' : Registry T) : Prop where
  types : ∀ t n, r.typesToNames t = some n → r'.typesToNames t = some n
  names : ∀ n t, r.namesToTypes n = some t → r'.namesToTypes n = some t
  fields : ∀ t n, r.typesToNames t = some n → r'.encryptedFields t = r.encryptedFields t

/-- The two maps are inverse to each other, and each registered type has the encrypted fields
that one of the calls has found. -/
structure Inv {T : Type} (known : Classes T → Prop) (r : Registry T) : Prop where
  inverse : ∀ t n, r.typesToNames t = some n ↔ r.namesToTypes n = some t
  fields : ∀ t n, r.typesToNames t = some n → ∃ classes, known classes ∧
    ∃ fields, classes.getEncryptedFields classes.recursionLimit t = .ok fields ∧
      r.encryptedFields t = some fields

section Steps
variable {T : Type} {r r' r'' : Registry T} {known : Classes T → Prop}

theorem Kept.refl (r : Registry T) : Kept r r := ⟨fun _ _ => id, fun _ _ => id, fun _ _ _ => rfl⟩

theorem Kept.trans (h : Kept r r') (h' : Kept r' r'') : Kept r r'' where
  types t n ht := h'.types t n (h.types t n ht)
  names n t hn := h'.names n t (h.names n t hn)
  fields t n ht := (h'.fields t n (h.types t n ht)).trans (h.fields t n ht)

/-- A type that is not in the map is not one that is. -/
theorem ne_of_types {event t : T} {n : String} (htype : r.typesToNames event = none)
    (ht : r.typesToNames t = some n) : t ≠ event := by
  rintro rfl
  rw [htype] at ht
  cases ht

theorem inv_empty : Inv known ({} : Registry T) :=
  ⟨fun _ _ => ⟨nofun, nofun⟩, nofun⟩

theorem Inv.mono {known' : Classes T → Prop} (hsub : ∀ classes, known classes → known' classes)
    (h : Inv known r) : Inv known' r := by
  refine ⟨h.inverse, fun t n ht => ?_⟩
  obtain ⟨classes, hknown, hfields⟩ := h.fields t n ht
  exact ⟨classes, hsub classes hknown, hfields⟩

theorem andThen_eq_ok {A B : Type} {first : Except (RegistryError T) A × Registry T}
    {next : A → Registry T → Except (RegistryError T) B × Registry T} {b : B} :
    andThen first next = (.ok b, r') ↔
      ∃ a r₁, first = (.ok a, r₁) ∧ next a r₁ = (.ok b, r') := by
  obtain ⟨answer, r₁⟩ := first
  cases answer with
  | error e => simp [andThen]
  | ok a => simp [andThen]

theorem elim_eq_ok {A : Type} {found : Option A} {a : A} :
    found.elim (Except.error (RegistryError.keyError : RegistryError T)) Except.ok = .ok a ↔
      found = some a := by
  cases found <;> simp

/-- What holds of a call in every registry: it keeps what is registered, and keeps the invariant
unless encrypted fields are not collected. -/
structure Grows {A : Type} (known : Classes T → Prop) (r : Registry T)
    (out : Except (RegistryError T) A × Registry T) : Prop where
  kept : Kept r out.2
  inv : (∀ t e, out.1 ≠ .error (.uncollected t e)) → Inv known r → Inv known out.2

theorem Grows.refl {A : Type} (answer : Except (RegistryError T) A) (r : Registry T) :
    Grows known r (answer, r) := ⟨Kept.refl r, fun _ h => h⟩

/-- What raises keeps what was done before it, and what does not raise goes on. -/
theorem Grows.andThen {A B : Type} {first : Except (RegistryError T) A × Registry T}
    {next : A → Registry T → Except (RegistryError T) B × Registry T}
    (h : Grows known r first) (hnext : ∀ a r', Grows known r' (next a r')) :
    Grows known r (andThen first next) := by
  obtain ⟨answer, r'⟩ := first
  cases answer with
  | error e =>
    refine ⟨h.kept, fun hcollected => h.inv fun t e' ht => hcollected t e' ?_⟩
    cases ht
    rfl
  | ok a =>
    have hgoes := hnext a r'
    refine ⟨h.kept.trans hgoes.kept, fun hcollected hinv => hgoes.inv hcollected ?_⟩
    exact h.inv (fun t e ht => by cases ht) hinv

variable [DecidableEq T] {classes : Classes T}

/-- A new pair takes a free type and a free name. -/
theorem kept_setName {event : T} {name : String} (htype : r.typesToNames event = none)
    (hfree : r.namesToTypes name = none) : Kept r (r.setName event name) where
  types t n ht := (Function.update_of_ne (ne_of_types htype ht) _ _).trans ht
  names n t hn := by
    have hne : n ≠ name := by
      rintro rfl
      rw [hfree] at hn
      cases hn
    exact (Function.update_of_ne hne _ _).trans hn
  fields _ _ _ := rfl

/-- Fields are collected for a new type. -/
theorem Kept.setEncryptedFields {event : T} {fields : List (String × Encrypted)} (h : Kept r r')
    (htype : r.typesToNames event = none) : Kept r (r'.setEncryptedFields event fields) where
  types := h.types
  names := h.names
  fields t n ht :=
    (Function.update_of_ne (ne_of_types htype ht) _ _).trans (h.fields t n ht)

theorem Kept.setSubjectField {event : T} {field : Option String} (h : Kept r r') :
    Kept r (r'.setSubjectField event field) := by
  cases field <;> exact ⟨h.types, h.names, h.fields⟩

/-- A new pair leaves the maps inverse to each other. -/
theorem inverse_setName {event : T} {name : String} (htype : r.typesToNames event = none)
    (hfree : r.namesToTypes name = none)
    (h : ∀ t n, r.typesToNames t = some n ↔ r.namesToTypes n = some t) (t : T) (n : String) :
    (r.setName event name).typesToNames t = some n ↔
      (r.setName event name).namesToTypes n = some t := by
  by_cases ht : t = event <;> by_cases hn : n = name
  · simp [Registry.setName, ht, hn]
  · have hother : r.namesToTypes n ≠ some event := by simp [← h, htype]
    simpa [Registry.setName, ht, hn, Ne.symm hn] using hother
  · have hother : r.typesToNames t ≠ some name := by simp [h, hfree]
    simpa [Registry.setName, ht, hn, Ne.symm ht] using hother
  · simpa [Registry.setName, ht, hn] using h t n

/-- The fields that are collected for a new type go with its pair. -/
theorem inv_setName {event : T} {name : String} {fields : List (String × Encrypted)}
    (hknown : known classes) (htype : r.typesToNames event = none)
    (hfree : r.namesToTypes name = none)
    (hfields : classes.getEncryptedFields classes.recursionLimit event = .ok fields)
    (h : Inv known r) : Inv known ((r.setName event name).setEncryptedFields event fields) := by
  refine ⟨inverse_setName htype hfree h.inverse, fun t n ht => ?_⟩
  by_cases hevent : t = event
  · subst hevent
    exact ⟨classes, hknown, fields, hfields, Function.update_self _ _ _⟩
  · have hbefore : r.typesToNames t = some n := (Function.update_of_ne hevent _ _).symm.trans ht
    obtain ⟨found, hfound, others, hothers, hheld⟩ := h.fields t n hbefore
    exact ⟨found, hfound, others, hothers, (Function.update_of_ne hevent _ _).trans hheld⟩

theorem Inv.setSubjectField {event : T} {field : Option String} (h : Inv known r) :
    Inv known (r.setSubjectField event field) := by
  cases field <;> exact ⟨h.inverse, h.fields⟩

theorem grows_add (hknown : known classes) (event : T) (r : Registry T) :
    Grows known r (add classes event r) := by
  have hadd := added classes event r
  generalize add classes event r = out at hadd ⊢
  cases hadd with
  | knownType name htype => exact .refl _ r
  | knownName name other htype hname hother => exact .refl _ r
  | unnamed htype hname => exact .refl _ r
  | uncollected name e htype hname hfree hfields =>
    exact ⟨kept_setName htype hfree, fun hcollected => absurd rfl (hcollected event e)⟩
  | fieldless name fields htype hname hfree hfields hmodel =>
    exact ⟨(kept_setName htype hfree).setEncryptedFields htype,
      fun _ hinv => inv_setName hknown htype hfree hfields hinv⟩
  | added name fields modelFields htype hname hfree hfields hmodel =>
    exact ⟨((kept_setName htype hfree).setEncryptedFields htype).setSubjectField,
      fun _ hinv => (inv_setName hknown htype hfree hfields hinv).setSubjectField⟩

theorem lifts_grows (hknown : known classes) :
    Lifts classes fun _ r out => Grows known r out where
  ok _ a r := .refl (.ok a) r
  unnamed r := .refl _ r
  missing _ r := .refl _ r
  add := grows_add hknown
  andThen _ _ _ _ _ h hnext := h.andThen hnext

/-- What is registered stays registered, whatever is called. -/
theorem kept_run (r : Registry T) (calls : List (Classes T × Call T)) :
    Kept r (run step r calls).2 := by
  have hstep : ∀ r' i, Kept r r' → Kept r (step r' i).2 := by
    intro r' i h
    have hgrows : Grows (fun _ => True) r' (step r' i) := (lifts_grows trivial).step i.2 r'
    exact h.trans hgrows.kept
  exact run_invariant hstep (Kept.refl r) calls

/-- Every step of a run keeps the invariant, as long as encrypted fields are collected. -/
theorem inv_run {calls : List (Classes T × Call T)} (hknown : ∀ i ∈ calls, known i.1)
    (hcollected : ∀ answer ∈ (run step r calls).1, ∀ t e, answer ≠ .error (.uncollected t e))
    (h : Inv known r) : Inv known (run step r calls).2 := by
  induction calls generalizing r with
  | nil => exact h
  | cons i calls ih =>
    have hfirst := ((lifts_grows (hknown i (by simp))).step i.2 r).inv (hcollected _ (by simp)) h
    exact ih (fun j hj => hknown j (by simp [hj]))
      (fun answer hanswer => hcollected answer (by simp [hanswer])) hfirst

theorem inv_create {r : Registry T} (hknown : known classes) (h : create classes = (.ok (), r)) :
    Inv known r := by
  have hgrows := (lifts_grows hknown).registerDefinedEvents classes.subclasses {}
  rw [create] at h
  rw [h] at hgrows
  exact hgrows.inv (fun t e ht => by cases ht) inv_empty

/-! ## Lookups -/

/-- A name that a lookup answers is in the map. -/
theorem types_of_nameForType {t : T} {n : String} (h : nameForType classes t r = (.ok n, r')) :
    r'.typesToNames t = some n := by
  obtain ⟨-, r₁, -, h⟩ := andThen_eq_ok.1 h
  obtain ⟨hanswer, rfl⟩ := Prod.mk.inj h
  exact elim_eq_ok.1 hanswer

theorem names_of_typeForName {t : T} {n : String} (h : typeForName classes n r = (.ok t, r')) :
    r'.namesToTypes n = some t := by
  obtain ⟨-, r₁, -, h⟩ := andThen_eq_ok.1 h
  obtain ⟨hanswer, rfl⟩ := Prod.mk.inj h
  exact elim_eq_ok.1 hanswer

/-- A type that is registered is looked up without a change. -/
theorem nameForType_of_types {t : T} {n : String} (h : r.typesToNames t = some n) :
    nameForType classes t r = (.ok n, r) := by
  simp [nameForType, registerMissing, andThen, h]

theorem typeForName_of_names {t : T} {n : String} (h : r.namesToTypes n = some t) :
    typeForName classes n r = (.ok t, r) := by
  simp [typeForName, registerMissing, andThen, h]

/-- The type of the name of a type is the type. -/
theorem typeForName_nameForType {t : T} {n : String} (hknown : known classes) (hinv : Inv known r)
    (h : nameForType classes t r = (.ok n, r')) (later : Classes T) :
    typeForName later n r' = (.ok t, r') := by
  have hgrows := (lifts_grows hknown).nameForType t r
  rw [h] at hgrows
  have hinverse := (hgrows.inv (fun t e he => by cases he) hinv).inverse t n
  exact typeForName_of_names (hinverse.1 (types_of_nameForType h))

/-- The name of the type of a name is the name. -/
theorem nameForType_typeForName {t : T} {n : String} (hknown : known classes) (hinv : Inv known r)
    (h : typeForName classes n r = (.ok t, r')) (later : Classes T) :
    nameForType later t r' = (.ok n, r') := by
  have hgrows := (lifts_grows hknown).typeForName n r
  rw [h] at hgrows
  have hinverse := (hgrows.inv (fun t e he => by cases he) hinv).inverse t n
  exact nameForType_of_types (hinverse.2 (names_of_typeForName h))

/-- A type is refused, and nothing is changed, if it or its name is registered. -/
theorem add_duplicated_iff (classes : Classes T) (event : T) (r : Registry T) :
    ((add classes event r).1 = .error .duplicatedEvent ↔
        (∃ n, r.typesToNames event = some n) ∨
          ∃ n t, classes.eventName event = some n ∧ r.namesToTypes n = some t) ∧
      ((add classes event r).1 = .error .duplicatedEvent → (add classes event r).2 = r) := by
  have hadd := added classes event r
  generalize add classes event r = out at hadd ⊢
  cases hadd with
  | knownType name htype => exact ⟨by simp [htype], fun _ => rfl⟩
  | knownName name other htype hname hother => exact ⟨by simp [hname, hother], fun _ => rfl⟩
  | unnamed htype hname => exact ⟨by simp [htype, hname], nofun⟩
  | uncollected name e htype hname hfree hfields =>
    exact ⟨by simp [htype, hname, hfree], nofun⟩
  | fieldless name fields htype hname hfree hfields hmodel =>
    exact ⟨by simp [htype, hname, hfree], nofun⟩
  | added name fields modelFields htype hname hfree hfields hmodel =>
    exact ⟨by simp [htype, hname, hfree], nofun⟩

/-! ## Annotations that come to an end -/

/-- The type and its name are both new. -/
def New (classes : Classes T) (r : Registry T) (t : T) : Prop :=
  r.typesToNames t = none ∧ ∀ n, classes.eventName t = some n → r.namesToTypes n = none

omit [DecidableEq T] in
theorem New.of_kept {t : T} (h : New classes r' t) (hkept : Kept r r') : New classes r t := by
  constructor
  · cases ht : r.typesToNames t with
    | none => rfl
    | some n => exact (hkept.types t n ht).symm.trans h.1
  · intro n hname
    cases hn : r.namesToTypes n with
    | none => rfl
    | some t' => exact (hkept.names n t' hn).symm.trans (h.2 n hname)

def Subclasses.toList : Subclasses T → List T
  | .nil => []
  | .cons event own others => event :: (own.toList ++ others.toList)

/-- The classes that a call goes through to register them. -/
def candidates (r : Registry T) (i : Classes T × Call T) : List T :=
  match i.2 with
  | .add event => [event]
  | .typeForName name => if (r.namesToTypes name).isNone then i.1.subclasses.toList else []
  | .nameForType event => if (r.typesToNames event).isNone then i.1.subclasses.toList else []

/-- The annotations of every class that a call may register come to an end. -/
def Ending (r : Registry T) (i : Classes T × Call T) : Prop :=
  ∀ t ∈ candidates r i, New i.1 r t → i.1.ends i.1.recursionLimit t

theorem add_ending {event : T} (h : New classes r event → classes.ends classes.recursionLimit event)
    (t : T) : (add classes event r).1 ≠ .error (.uncollected t .recursionError) := by
  have hadd := added classes event r
  generalize add classes event r = out at hadd ⊢
  cases hadd with
  | uncollected name e htype hname hfree hfields =>
    rintro ht
    cases ht
    refine Classes.not_recursionError (h ⟨htype, fun n hn => ?_⟩) hfields
    rw [hname] at hn
    cases hn
    exact hfree
  | _ => simp

theorem registerNew_ending {event : T}
    (h : New classes r event → classes.ends classes.recursionLimit event) (t : T) :
    (registerNew classes event r).1 ≠ .error (.uncollected t .recursionError) := by
  unfold registerNew
  cases classes.eventName event with
  | none => simp
  | some name =>
    dsimp only
    split
    · exact add_ending h t
    · simp

omit [DecidableEq T] in
theorem andThen_ne {A B : Type} {first : Except (RegistryError T) A × Registry T}
    {next : A → Registry T → Except (RegistryError T) B × Registry T} {e : RegistryError T}
    (h : first.1 ≠ .error e) (hnext : ∀ a, (next a first.2).1 ≠ .error e) :
    (andThen first next).1 ≠ .error e := by
  obtain ⟨answer, r⟩ := first
  cases answer with
  | error e' =>
    intro he
    cases he
    exact h rfl
  | ok a => exact hnext a

/-- A walk among classes of which the new ones come to an end. -/
theorem registerDefinedEvents_ending {events : Subclasses T} (hkept : Kept r r')
    (h : ∀ t ∈ events.toList, New classes r t → classes.ends classes.recursionLimit t) (t : T) :
    (registerDefinedEvents classes events r').1 ≠ .error (.uncollected t .recursionError) := by
  induction events generalizing r' with
  | nil => simp [registerDefinedEvents]
  | cons event own others ihOwn ihOthers =>
    have hgrows : Lifts classes fun _ r out => Grows (fun _ => True) r out := lifts_grows trivial
    have hfirst : Kept r (registerNew classes event r').2 :=
      hkept.trans (hgrows.registerNew event r').kept
    have hown : Kept r (registerDefinedEvents classes own (registerNew classes event r').2).2 :=
      hfirst.trans (hgrows.registerDefinedEvents own _).kept
    refine andThen_ne (registerNew_ending (fun hnew => ?_) t) fun _ => andThen_ne ?_ fun _ => ?_
    · exact h event List.mem_cons_self (hnew.of_kept hkept)
    · exact ihOwn hfirst fun s hs =>
        h s (List.mem_cons_of_mem _ (List.mem_append_left _ hs))
    · exact ihOthers hown fun s hs =>
        h s (List.mem_cons_of_mem _ (List.mem_append_right _ hs))

theorem registerMissing_ending {missing : Bool}
    (h : ∀ t ∈ if missing then classes.subclasses.toList else [],
      New classes r t → classes.ends classes.recursionLimit t) (t : T) :
    (registerMissing classes missing r).1 ≠ .error (.uncollected t .recursionError) := by
  cases missing with
  | false => simp [registerMissing]
  | true => exact registerDefinedEvents_ending (Kept.refl r) h t

omit [DecidableEq T] in
theorem elim_ne {A : Type} (found : Option A) (t : T) (e : CollectError) :
    found.elim (Except.error (.keyError : RegistryError T)) Except.ok ≠
      .error (.uncollected t e) := by
  cases found <;> simp

/-- A call does not run out of depth where the annotations come to an end. -/
theorem step_ending {i : Classes T × Call T} (h : Ending r i) (t : T) :
    (step r i).1 ≠ .error (.uncollected t .recursionError) := by
  obtain ⟨classes, call⟩ := i
  cases call with
  | add event =>
    exact andThen_ne (add_ending (h event (List.mem_singleton_self event)) t) fun _ => by simp
  | typeForName name =>
    exact andThen_ne (andThen_ne (registerMissing_ending h t) fun _ => elim_ne _ _ _)
      fun _ => by simp
  | nameForType event =>
    exact andThen_ne (andThen_ne (registerMissing_ending h t) fun _ => elim_ne _ _ _)
      fun _ => by simp

/-- In every run in which hints are resolved and annotations come to an end, the two maps are
inverse to each other, pairs stay as they are, registered types have their encrypted fields, lookups
undo each other, and exactly types that are registered or whose name is are refused as
duplicated. -/
theorem two_way_map {classes₀ : Classes T} {r₀ : Registry T}
    (hcreate : create classes₀ = (.ok (), r₀)) (calls : List (Classes T × Call T))
    (hresolved : ∀ answer ∈ (run step r₀ calls).1, ∀ t,
      answer ≠ .error (.uncollected t .unresolvedHints))
    (hends : Meets step Ending r₀ calls) :
    let r := (run step r₀ calls).2
    (∀ t n, r.typesToNames t = some n ↔ r.namesToTypes n = some t) ∧
    (∀ later, Kept r (run step r later).2) ∧
    (∀ t n, r.typesToNames t = some n → ∃ classes ∈ classes₀ :: calls.map Prod.fst,
      ∃ fields, classes.getEncryptedFields classes.recursionLimit t = .ok fields ∧
        r.encryptedFields t = some fields) ∧
    (∀ classes t n r', nameForType classes t r = (.ok n, r') →
      ∀ later, typeForName later n r' = (.ok t, r')) ∧
    (∀ classes n t r', typeForName classes n r = (.ok t, r') →
      ∀ later, nameForType later t r' = (.ok n, r')) ∧
    ∀ classes t,
      ((add classes t r).1 = .error .duplicatedEvent ↔
        (∃ n, r.typesToNames t = some n) ∨
          ∃ n t', classes.eventName t = some n ∧ r.namesToTypes n = some t') ∧
      ((add classes t r).1 = .error .duplicatedEvent → (add classes t r).2 = r) := by
  intro r
  have hending : ∀ answer ∈ (run step r₀ calls).1, ∀ t,
      answer ≠ .error (.uncollected t .recursionError) :=
    forall_answers (fun _ _ => step_ending) hends
  have hcollected : ∀ answer ∈ (run step r₀ calls).1, ∀ t e,
      answer ≠ .error (.uncollected t e) := by
    intro answer hanswer t e
    cases e with
    | unresolvedHints => exact hresolved answer hanswer t
    | recursionError => exact hending answer hanswer t
  have hinv : Inv (· ∈ classes₀ :: calls.map Prod.fst) r := by
    refine inv_run (fun i hi => ?_) hcollected (inv_create List.mem_cons_self hcreate)
    exact List.mem_cons_of_mem _ (List.mem_map_of_mem hi)
  have hany : Inv (fun _ => True) r := hinv.mono fun _ _ => trivial
  refine ⟨hinv.inverse, kept_run r, hinv.fields, ?_, ?_, ?_⟩
  · intro classes t n r' h later
    exact typeForName_nameForType trivial hany h later
  · intro classes n t r' h later
    exact nameForType_typeForName trivial hany h later
  · intro classes t
    exact add_duplicated_iff classes t r

end Steps

section Examples

/-- Every class is named `app.` and itself, and has one field, which is the subject. -/
def appClasses (subclasses : Subclasses String) : Classes String where
  subclasses := subclasses
  ownName := fun _ => none
  moduleName := fun _ => some "app"
  qualname := id
  typeHints := fun _ => some [("who", .other)]
  modelFields := fun _ => some [("who", [.dataSubject])]

def paid : Classes String := appClasses (.cons "Paid" .nil .nil)

def paidAndShipped : Classes String := appClasses (.cons "Paid" (.cons "Shipped" .nil .nil) .nil)

/-- A class below a registered one is found when it is looked up. -/
theorem two_way_map_shipped :
    let r := (run step (create paid).2 [(paidAndShipped, .nameForType "Shipped")]).2
    r.namesToTypes "app.Shipped" = some "Shipped" ∧
      r.encryptedFields "Shipped" = some [] ∧
      typeForName paid "app.Shipped" r = (.ok "Shipped", r) ∧
      add paidAndShipped "Paid" r = (.error .duplicatedEvent, r) := by
  intro r
  have hanswers : (run step (create paid).2 [(paidAndShipped, .nameForType "Shipped")]).1 =
      [.ok (.name "app.Shipped")] := rfl
  have hresolved : ∀ answer ∈
      (run step (create paid).2 [(paidAndShipped, .nameForType "Shipped")]).1,
      ∀ t, answer ≠ .error (.uncollected t .unresolvedHints) := by
    rw [hanswers]
    rintro answer hanswer t rfl
    cases List.mem_singleton.1 hanswer
  have hends : Meets step Ending (create paid).2 [(paidAndShipped, .nameForType "Shipped")] :=
    ⟨fun _ _ _ => rfl, trivial⟩
  have hcreate : create paid = (.ok (), (create paid).2) := rfl
  obtain ⟨hinverse, -, -, htype, -, hadd⟩ := two_way_map hcreate _ hresolved hends
  have hshipped : r.typesToNames "Shipped" = some "app.Shipped" := rfl
  refine ⟨(hinverse "Shipped" "app.Shipped").1 hshipped, rfl, ?_, ?_⟩
  · exact htype paidAndShipped "Shipped" "app.Shipped" r (nameForType_of_types hshipped) paid
  · have hpaid := (hadd paidAndShipped "Paid").1.2 (.inl ⟨"app.Paid", rfl⟩)
    exact Prod.ext hpaid ((hadd paidAndShipped "Paid").2 hpaid)

/-- `Chapter` has a field of its own type. -/
def chapters : Classes String :=
  { appClasses .nil with typeHints := fun _ => some [("next", .type "Chapter")] }

theorem chapters_endless (depth : ℕ) :
    chapters.getEncryptedFields depth "Chapter" = .error .recursionError := by
  induction depth with
  | zero => rfl
  | succ depth ih =>
    rw [Classes.getEncryptedFields]
    change (do
      let fields ← encryptedFieldsOf (chapters.getEncryptedFields depth) "next" (.type "Chapter")
      pure [fields]).map List.flatten = _
    rw [encryptedFieldsOf, ih]
    rfl

theorem step_add {T : Type} [DecidableEq T] (classes : Classes T) (event : T) (r : Registry T) :
    step r (classes, .add event) =
      andThen (add classes event r) fun _ r => (.ok (.type event), r) := rfl

/-- `Chapter` is added to an empty registry. All hints are resolved, but no field is collected, and
the type is in both maps. -/
theorem two_way_map_chapters :
    let r := (run step (create (appClasses .nil)).2 [(chapters, .add "Chapter")]).2
    create (appClasses .nil) = (.ok (), (create (appClasses .nil)).2) ∧
      (run step (create (appClasses .nil)).2 [(chapters, .add "Chapter")]).1 =
        [.error (.uncollected "Chapter" .recursionError)] ∧
      r.typesToNames "Chapter" = some "app.Chapter" ∧
      r.namesToTypes "app.Chapter" = some "Chapter" ∧ r.encryptedFields "Chapter" = none := by
  have hadd : add chapters "Chapter" (create (appClasses .nil)).2 =
      (.error (.uncollected "Chapter" .recursionError),
        (create (appClasses .nil)).2.setName "Chapter" "app.Chapter") := by
    have hfields : chapters.getEncryptedFields chapters.recursionLimit "Chapter" =
        .error .recursionError := chapters_endless _
    unfold add
    rw [hfields]
    rfl
  have hstep : step (create (appClasses .nil)).2 (chapters, .add "Chapter") =
      (.error (.uncollected "Chapter" .recursionError),
        (create (appClasses .nil)).2.setName "Chapter" "app.Chapter") := by
    rw [step_add, hadd]
    rfl
  rw [run_cons, run_nil, hstep]
  exact ⟨rfl, rfl, rfl, rfl, rfl⟩

end Examples

end EventSourcery.EventRegistration
