import EventSourcery.NestedDict

/-!
# Encrypted fields of a type

What the registry collects from an event type when it is added. A type is known by
its resolved type hints and by the fields of its model with their metadata; field
names are Python identifiers, which have no dots. The mask of a field is a JSON
value here.
-/
namespace EventSourcery
open NestedDict

/-- The marker of an encrypted field. -/
structure Encrypted where
  maskValue : JsonText.Json
  subjectField : Option String := none
  deriving DecidableEq

/-- What annotations carry, as far as the registry looks at it. -/
inductive Metadata where
  | encrypted (config : Encrypted)
  | dataSubject
  | other
  deriving DecidableEq

def Metadata.encrypted? : Metadata → Option Encrypted
  | encrypted config => some config
  | _ => none

/-- A type hint: a class with its own hints, `Annotated`, or neither. -/
inductive Hint where
  | type (hints : List (String × Hint))
  | annotated (metadata : List Metadata)
  | other

mutual
/-- `get_encrypted_fields`, by dotted names. -/
def getEncryptedFields : List (String × Hint) → List (String × Encrypted)
  | [] => []
  | (field, hint) :: hints => encryptedFieldsOf field hint ++ getEncryptedFields hints
def encryptedFieldsOf (field : String) : Hint → List (String × Encrypted)
  | .type hints => (getEncryptedFields hints).map fun nested =>
      (field ++ "." ++ nested.1, nested.2)
  | .annotated metadata => ((metadata.findSome? Metadata.encrypted?).map fun config =>
      (field, config)).toList
  | .other => []
end

mutual
/-- Fields have different names without dots, in nested classes too. -/
def wellNamed : List (String × Hint) → Bool
  | [] => true
  | (field, hint) :: hints =>
      !field.toList.contains '.' && !(hints.map Prod.fst).contains field && wellNamedHint hint &&
        wellNamed hints
def wellNamedHint : Hint → Bool
  | .type hints => wellNamed hints
  | _ => true
end

/-- `get_data_subject_filed` -/
def getDataSubjectFiled (modelFields : List (String × List Metadata)) : Option String :=
  (modelFields.find? fun field => field.2.contains .dataSubject).map Prod.fst

structure EventType where
  hints : List (String × Hint)
  modelFields : List (String × List Metadata)
  wellNamed : wellNamed hints = true

namespace EventRegistry

/-- `encrypted_fields` of a registered type. -/
def encryptedFields (of : EventType) : List (String × Encrypted) := getEncryptedFields of.hints

/-- `subject_filed` of a registered type: the field that the marker names, or else the
data subject of the type. An empty name counts as none. -/
def subjectFiled (forField : String) (of : EventType) : Option String :=
  ((((encryptedFields of).lookup forField).bind Encrypted.subjectField).filter (· ≠ "")).or
    (getDataSubjectFiled of.modelFields)

end EventRegistry

section Paths

/-- The fields that are collected in a class are reached through the class's own fields. -/
theorem parts_encryptedFieldsOf {field : String} {hint : Hint} (h : '.' ∉ field.toList)
    {encrypted : String × Encrypted} (hmem : encrypted ∈ encryptedFieldsOf field hint) :
    ∃ path, parts encrypted.1 = field :: path := by
  cases hint with
  | type hints =>
    simp only [encryptedFieldsOf, List.mem_map] at hmem
    obtain ⟨nested, -, rfl⟩ := hmem
    exact ⟨_, parts_nested h nested.1⟩
  | annotated metadata =>
    simp only [encryptedFieldsOf, Option.mem_toList, Option.map_eq_some_iff] at hmem
    obtain ⟨config, -, rfl⟩ := hmem
    exact ⟨[], parts_of_undotted h⟩
  | other => simp [encryptedFieldsOf] at hmem

theorem parts_getEncryptedFields {hints : List (String × Hint)} (h : wellNamed hints)
    {encrypted : String × Encrypted} (hmem : encrypted ∈ getEncryptedFields hints) :
    ∃ field ∈ hints.map Prod.fst, ∃ path, parts encrypted.1 = field :: path := by
  induction hints with
  | nil => simp [getEncryptedFields] at hmem
  | cons head hints ih =>
    obtain ⟨field, hint⟩ := head
    simp only [wellNamed, Bool.and_eq_true, Bool.not_eq_true', List.contains_eq_mem,
      decide_eq_false_iff_not] at h
    simp only [getEncryptedFields, List.mem_append] at hmem
    rcases hmem with hmem | hmem
    · exact ⟨field, List.mem_cons_self, parts_encryptedFieldsOf h.1.1.1 hmem⟩
    · obtain ⟨other, hother, hpath⟩ := ih h.2 hmem
      exact ⟨other, List.mem_cons_of_mem _ hother, hpath⟩

mutual
/-- No encrypted field is inside another one. -/
theorem apart_getEncryptedFields : ∀ {hints : List (String × Hint)}, wellNamed hints →
    (getEncryptedFields hints).Pairwise fun a b => Apart (parts a.1) (parts b.1)
  | [], _ => by simp [getEncryptedFields]
  | (field, hint) :: hints, h => by
    simp only [wellNamed, Bool.and_eq_true, Bool.not_eq_true', List.contains_eq_mem,
      decide_eq_false_iff_not] at h
    obtain ⟨⟨⟨hfield, hnew⟩, hhint⟩, hhints⟩ := h
    rw [getEncryptedFields, List.pairwise_append]
    refine ⟨apart_encryptedFieldsOf hfield hhint, apart_getEncryptedFields hhints, ?_⟩
    intro a ha b hb
    obtain ⟨path, hpath⟩ := parts_encryptedFieldsOf hfield ha
    obtain ⟨other, hother, path', hpath'⟩ := parts_getEncryptedFields hhints hb
    rw [hpath, hpath']
    apply apart_of_ne
    rintro rfl
    exact hnew hother
theorem apart_encryptedFieldsOf : ∀ {field : String} {hint : Hint}, '.' ∉ field.toList →
    wellNamedHint hint → (encryptedFieldsOf field hint).Pairwise fun a b =>
      Apart (parts a.1) (parts b.1)
  | field, .type hints, hfield, hhints => by
    rw [encryptedFieldsOf, List.pairwise_map]
    apply (apart_getEncryptedFields hhints).imp
    intro a b hab
    rw [parts_nested hfield, parts_nested hfield]
    exact apart_cons.2 hab
  | field, .annotated metadata, _, _ => by
    simp only [encryptedFieldsOf]
    cases metadata.findSome? Metadata.encrypted? <;> simp
  | field, .other, _, _ => by simp [encryptedFieldsOf]
end

theorem EventRegistry.apart_encryptedFields (of : EventType) :
    (encryptedFields of).Pairwise fun a b => Apart (parts a.1) (parts b.1) :=
  apart_getEncryptedFields of.wellNamed

end Paths

end EventSourcery
