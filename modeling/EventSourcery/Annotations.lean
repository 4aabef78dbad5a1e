import EventSourcery.Encryption

/-!
# Annotated fields and what is encrypted of them

The annotations of a class, the values that they admit, and the fields that the
registry collects from them. A value is marked when its annotation carries the marker
of an encrypted field. The collector goes into a class that is the whole annotation of a
field. It does not go into optionals, unions and lists, and not into an `Annotated`
without the marker.
-/
namespace EventSourcery
open JsonText NestedDict EventRegistry Encryption

/-- A step from a JSON value to one inside it. -/
inductive JsonStep where
  | key (name : String)
  | index (i : ℕ)
  deriving DecidableEq

/-- The value at a path, in objects and lists. -/
def jsonAt : List JsonStep → Json → Option Json
  | [], value => some value
  | .key name :: path, .obj fields => (lookup name fields).bind (jsonAt path)
  | .index i :: path, .arr items => items[i]?.bind (jsonAt path)
  | _, _ => none

/-- The annotation of a field. A model class is known by its own fields, and a union of
several members is one of two; an optional is a union with a plain type. -/
inductive FieldType where
  | plain
  | annotated (inner : FieldType) (metadata : List Metadata)
  | model (fields : List (String × FieldType))
  | union (left right : FieldType)
  | list (item : FieldType)

namespace FieldType

/-- What `get_args` gives for an annotation: nested `Annotated` are one. -/
def metadata : FieldType → List Metadata
  | annotated inner outer => inner.metadata ++ outer
  | _ => []

def marked (fieldType : FieldType) : Bool :=
  (fieldType.metadata.findSome? Metadata.encrypted?).isSome

mutual
/-- The type hint that the registry sees. -/
def hint : FieldType → Hint
  | plain => .type []
  | annotated inner outer => .annotated (inner.metadata ++ outer)
  | model fields => .type (hints fields)
  | union _ _ => .other
  | list _ => .other
def hints : List (String × FieldType) → List (String × Hint)
  | [] => []
  | (field, fieldType) :: fields => (field, fieldType.hint) :: hints fields
end

mutual
/-- The paths of the collected fields. -/
def paths : FieldType → List (List String)
  | annotated inner outer => if (annotated inner outer).marked then [[]] else []
  | model fields => fieldPaths fields
  | _ => []
def fieldPaths : List (String × FieldType) → List (List String)
  | [] => []
  | (field, fieldType) :: fields => fieldType.paths.map (field :: ·) ++ fieldPaths fields
end

end FieldType

mutual
/-- The values that an annotation admits. A plain value is known by its dump. -/
inductive Value : FieldType → Type
  | plain (value : Json) : Value .plain
  | annotated {inner : FieldType} {outer : List Metadata} (value : Value inner) :
      Value (.annotated inner outer)
  | model {fields : List (String × FieldType)} (values : Values fields) : Value (.model fields)
  | left {left right : FieldType} (value : Value left) : Value (.union left right)
  | right {left right : FieldType} (value : Value right) : Value (.union left right)
  | list {item : FieldType} (items : Items item) : Value (.list item)
/-- The values of the fields of a class. -/
inductive Values : List (String × FieldType) → Type
  | nil : Values []
  | cons {field : String} {fieldType : FieldType} {fields : List (String × FieldType)}
      (value : Value fieldType) (values : Values fields) : Values ((field, fieldType) :: fields)
inductive Items : FieldType → Type
  | nil {item : FieldType} : Items item
  | cons {item : FieldType} (value : Value item) (items : Items item) : Items item
end

mutual
/-- `model_dump(mode="json")` -/
def Value.dump {fieldType : FieldType} : Value fieldType → Json
  | .plain value => value
  | .annotated value => value.dump
  | .model values => .obj values.dump
  | .left value => value.dump
  | .right value => value.dump
  | .list items => .arr items.dump
def Values.dump {fields : List (String × FieldType)} : Values fields → Dict
  | .nil => []
  | @Values.cons field _ _ value values => (field, value.dump) :: values.dump
def Items.dump {item : FieldType} : Items item → List Json
  | .nil => []
  | .cons value items => value.dump :: items.dump
end

mutual
/-- The paths of the marked values, at any depth and inside marked values too. -/
def Value.marked {fieldType : FieldType} : Value fieldType → List (List JsonStep)
  | .plain _ => []
  | @Value.annotated inner outer value =>
      (if (FieldType.annotated inner outer).marked then [[]] else []) ++ value.marked
  | .model values => values.marked
  | .left value => value.marked
  | .right value => value.marked
  | .list items => items.marked 0
def Values.marked {fields : List (String × FieldType)} : Values fields → List (List JsonStep)
  | .nil => []
  | @Values.cons field _ _ value values =>
      value.marked.map (.key field :: ·) ++ values.marked
def Items.marked {item : FieldType} : Items item → ℕ → List (List JsonStep)
  | .nil, _ => []
  | .cons value items, i => value.marked.map (.index i :: ·) ++ items.marked (i + 1)
end

mutual
/-- Whether every marked value is in a marked field of a class, reached through classes
only: optionals, unions, lists and annotations without the marker hold no marked value. -/
def Value.direct {fieldType : FieldType} : Value fieldType → Bool
  | .plain _ => true
  | @Value.annotated inner outer value =>
      (FieldType.annotated inner outer).marked || value.marked.isEmpty
  | .model values => values.direct
  | .left value => value.marked.isEmpty
  | .right value => value.marked.isEmpty
  | .list items => (items.marked 0).isEmpty
def Values.direct {fields : List (String × FieldType)} : Values fields → Bool
  | .nil => true
  | .cons value values => value.direct && values.direct
end

/-- A path inside what one of the given paths leads to. -/
def Covers (paths : List (List String)) (p : List JsonStep) : Prop :=
  ∃ q ∈ paths, q.map .key <+: p

section Paths
variable {fieldType : FieldType} {fields : List (String × FieldType)} {field name : String}
  {p : List JsonStep} {paths paths' : List (List String)}

/-- The collected names are the dotted paths. -/
theorem map_parts_getEncryptedFields :
    ∀ {fields : List (String × FieldType)}, wellNamed (FieldType.hints fields) →
      (getEncryptedFields (FieldType.hints fields)).map (fun f => parts f.1) =
        FieldType.fieldPaths fields
  | [], _ => rfl
  | (field, fieldType) :: fields, h => by
    simp only [FieldType.hints, wellNamed, Bool.and_eq_true, Bool.not_eq_true',
      List.contains_eq_mem, decide_eq_false_iff_not] at h
    obtain ⟨⟨⟨hfield, -⟩, hhint⟩, hhints⟩ := h
    rw [FieldType.hints, getEncryptedFields, List.map_append, FieldType.fieldPaths,
      map_parts_getEncryptedFields hhints]
    congr 1
    cases fieldType with
    | annotated inner outer =>
      simp only [FieldType.hint, encryptedFieldsOf, FieldType.paths, FieldType.marked,
        FieldType.metadata]
      obtain ⟨marker, hmarker⟩ :
        ∃ marker, (inner.metadata ++ outer).findSome? Metadata.encrypted? = marker := ⟨_, rfl⟩
      cases marker with
      | none => simp [hmarker]
      | some config => simp [hmarker, parts_of_undotted hfield]
    | model nested =>
      rw [FieldType.paths, ← map_parts_getEncryptedFields hhint, FieldType.hint,
        encryptedFieldsOf, List.map_map, List.map_map]
      apply List.map_congr_left
      intro f _
      exact parts_nested hfield f.1
    | plain => rfl
    | union left right => rfl
    | list item => rfl

theorem covers_append : Covers (paths ++ paths') p ↔ Covers paths p ∨ Covers paths' p := by
  simp [Covers, or_and_right, exists_or]

/-- Paths under one key cover only what is under it. -/
theorem covers_map_cons : Covers (paths.map (field :: ·)) (.key name :: p) ↔
    field = name ∧ Covers paths p := by
  simp only [Covers, List.mem_map, exists_exists_and_eq_and, List.map_cons, List.cons_prefix_cons,
    JsonStep.key.injEq]
  tauto

/-- The collected paths start with fields of the class. -/
theorem exists_of_mem_fieldPaths {q : List String} (h : q ∈ FieldType.fieldPaths fields) :
    ∃ name ∈ fields.map Prod.fst, ∃ path, q = name :: path := by
  induction fields with
  | nil => simp [FieldType.fieldPaths] at h
  | cons head fields ih =>
    rw [FieldType.fieldPaths, List.mem_append, List.mem_map] at h
    rcases h with ⟨path, -, rfl⟩ | h
    · exact ⟨head.1, List.mem_cons_self, path, rfl⟩
    · obtain ⟨name, hname, hpath⟩ := ih h
      exact ⟨name, List.mem_cons_of_mem _ hname, hpath⟩

/-- The marked paths start with fields of the class. -/
theorem exists_of_mem_marked : ∀ {fields : List (String × FieldType)} {values : Values fields},
    p ∈ values.marked → ∃ name ∈ fields.map Prod.fst, ∃ path, p = .key name :: path
  | _, .nil, h => by simp [Values.marked] at h
  | _, @Values.cons field fieldType fields value values, h => by
    rw [Values.marked, List.mem_append, List.mem_map] at h
    rcases h with ⟨path, -, rfl⟩ | h
    · exact ⟨field, List.mem_cons_self, path, rfl⟩
    · obtain ⟨name, hname, hpath⟩ := exists_of_mem_marked h
      exact ⟨name, List.mem_cons_of_mem _ hname, hpath⟩

theorem map_fst_dump : ∀ {fields : List (String × FieldType)} {values : Values fields},
    values.dump.map Prod.fst = fields.map Prod.fst
  | _, .nil => rfl
  | _, @Values.cons field _ _ _ _ => congrArg (field :: ·) map_fst_dump

theorem map_fst_hints : (FieldType.hints fields).map Prod.fst = fields.map Prod.fst := by
  induction fields with
  | nil => rfl
  | cons head fields ih => rw [FieldType.hints, List.map_cons, ih, List.map_cons]

end Paths

section Covering

mutual
/-- The collected paths cover every marked value, if and only if the value is direct. -/
theorem covers_iff : ∀ {fieldType : FieldType} (value : Value fieldType),
    wellNamedHint fieldType.hint →
      ((∀ p ∈ value.marked, Covers fieldType.paths p) ↔ value.direct)
  | _, .plain value, _ => by simp [Value.marked, Value.direct]
  | _, @Value.annotated inner outer value, _ => by
    by_cases hmarked : (FieldType.annotated inner outer).marked
    · simp [Value.direct, FieldType.paths, hmarked, Covers]
    · simp [Value.marked, Value.direct, FieldType.paths, hmarked, Covers,
        List.eq_nil_iff_forall_not_mem]
  | _, .model values, h => covers_fields_iff values h
  | _, .left value, _ => by
    simp [Value.marked, Value.direct, FieldType.paths, Covers, List.eq_nil_iff_forall_not_mem]
  | _, .right value, _ => by
    simp [Value.marked, Value.direct, FieldType.paths, Covers, List.eq_nil_iff_forall_not_mem]
  | _, .list items, _ => by
    simp [Value.marked, Value.direct, FieldType.paths, Covers, List.eq_nil_iff_forall_not_mem]
theorem covers_fields_iff : ∀ {fields : List (String × FieldType)} (values : Values fields),
    wellNamed (FieldType.hints fields) →
      ((∀ p ∈ values.marked, Covers (FieldType.fieldPaths fields) p) ↔ values.direct)
  | _, .nil, _ => by simp [Values.marked, Values.direct]
  | _, @Values.cons field fieldType fields value values, h => by
    simp only [FieldType.hints, wellNamed, Bool.and_eq_true, Bool.not_eq_true',
      List.contains_eq_mem, decide_eq_false_iff_not, map_fst_hints] at h
    obtain ⟨⟨⟨-, hnew⟩, hhint⟩, hhints⟩ := h
    rw [Values.marked, Values.direct, Bool.and_eq_true, ← covers_iff value hhint,
      ← covers_fields_iff values hhints, List.forall_mem_append, List.forall_mem_map,
      FieldType.fieldPaths]
    apply and_congr
    · apply forall₂_congr
      intro p _
      rw [covers_append, covers_map_cons, or_iff_left, and_iff_right rfl]
      rintro ⟨q, hq, hinitial⟩
      obtain ⟨name, hname, path, rfl⟩ := exists_of_mem_fieldPaths hq
      obtain rfl : name = field := by simpa using (List.cons_prefix_cons.1 hinitial).1
      exact hnew hname
    · apply forall₂_congr
      intro p hp
      obtain ⟨name, hname, path, rfl⟩ := exists_of_mem_marked hp
      rw [covers_append, covers_map_cons, or_iff_right]
      rintro ⟨rfl, -⟩
      exact hnew hname
end

mutual
/-- No collected path goes through a marked value that it does not cover. -/
theorem prefix_of_marked : ∀ {fieldType : FieldType} {value : Value fieldType}
    {p : List JsonStep} {q : List String}, wellNamedHint fieldType.hint → p ∈ value.marked →
      q ∈ fieldType.paths → p <+: q.map .key → q.map .key <+: p
  | _, .plain value, p, q, _, hp, _, _ => by simp [Value.marked] at hp
  | _, @Value.annotated inner outer value, p, q, _, _, hq, h => by
    rw [FieldType.paths] at hq
    split at hq
    · rw [List.mem_singleton.1 hq]
      exact List.nil_prefix
    · cases hq
  | _, .model values, p, q, hnamed, hp, hq, h => prefix_of_marked_fields hnamed hp hq h
  | _, .left value, p, q, _, _, hq, _ => by cases hq
  | _, .right value, p, q, _, _, hq, _ => by cases hq
  | _, .list items, p, q, _, _, hq, _ => by cases hq
theorem prefix_of_marked_fields : ∀ {fields : List (String × FieldType)} {values : Values fields}
    {p : List JsonStep} {q : List String}, wellNamed (FieldType.hints fields) →
      p ∈ values.marked → q ∈ FieldType.fieldPaths fields →
        p <+: q.map .key → q.map .key <+: p
  | _, .nil, p, q, _, hp, _, _ => by simp [Values.marked] at hp
  | _, @Values.cons field fieldType fields value values, p, q, hnamed, hp, hq, h => by
    simp only [FieldType.hints, wellNamed, Bool.and_eq_true, Bool.not_eq_true',
      List.contains_eq_mem, decide_eq_false_iff_not, map_fst_hints] at hnamed
    obtain ⟨⟨⟨-, hnew⟩, hhint⟩, hhints⟩ := hnamed
    rw [Values.marked, List.mem_append, List.mem_map] at hp
    rw [FieldType.fieldPaths, List.mem_append, List.mem_map] at hq
    rcases hp with ⟨p, hp, rfl⟩ | hp <;> rcases hq with ⟨q, hq, rfl⟩ | hq
    · rw [List.map_cons, List.cons_prefix_cons] at h ⊢
      exact ⟨rfl, prefix_of_marked hhint hp hq h.2⟩
    · obtain ⟨name, hname, path, rfl⟩ := exists_of_mem_fieldPaths hq
      obtain rfl : field = name := by simpa using (List.cons_prefix_cons.1 h).1
      exact absurd hname hnew
    · obtain ⟨name, hname, path, rfl⟩ := exists_of_mem_marked hp
      obtain rfl : name = field := by simpa using (List.cons_prefix_cons.1 h).1
      exact absurd hname hnew
    · exact prefix_of_marked_fields hhints hp hq h
end

end Covering

section Stored
variable {p : List JsonStep} {q : List String} {data raw : Dict} {old written : Json}

/-- A write leaves what is neither inside nor outside its place. -/
theorem jsonAt_put (hat : At q data old) (hinside : ¬ q.map .key <+: p)
    (houtside : ¬ p <+: q.map .key) :
    jsonAt p (.obj (put q written data)) = jsonAt p (.obj data) := by
  induction q generalizing p data with
  | nil => exact absurd rfl hat.ne_nil
  | cons key q ih =>
    cases p with
    | nil => exact absurd List.nil_prefix houtside
    | cons step p =>
      cases step with
      | index i => rfl
      | key name =>
        by_cases hne : key = name
        · subst hne
          rw [List.map_cons, List.cons_prefix_cons] at hinside houtside
          cases hat with
          | here => exact absurd ⟨rfl, List.nil_prefix⟩ hinside
          | there hlookup _ hpath =>
            rw [put_cons hpath.ne_nil hlookup]
            simp only [jsonAt, lookup_store, if_true, hlookup, Option.bind_some]
            exact ih hpath (fun h => hinside ⟨rfl, h⟩) fun h => houtside ⟨rfl, h⟩
        · simp only [jsonAt, lookup_put_of_ne hne hat]

variable {K : Type} {encryption : Encryption K} {event : EventInstance} {streamId : StreamId}
  {call : ℕ} {fields : List (String × Encrypted)}

/-- Encryption leaves what is neither inside nor outside a field. -/
theorem jsonAt_encryptFields (hinside : ∀ f ∈ fields, ¬ (parts f.1).map .key <+: p)
    (houtside : ∀ f ∈ fields, ¬ p <+: (parts f.1).map .key)
    (h : encryption.encryptFields event streamId call fields data = .ok raw) :
    jsonAt p (.obj raw) = jsonAt p (.obj data) :=
  (puts_of_encryptFields h).keeps (P := fun d => jsonAt p (.obj d) = jsonAt p (.obj data))
    (fun f hf _ _ _ hat hd => (jsonAt_put hat (hinside f hf) (houtside f hf)).trans hd) rfl

mutual
/-- A marked path leads to a value. -/
theorem jsonAt_of_marked : ∀ {fieldType : FieldType} {value : Value fieldType}
    {p : List JsonStep}, WellFormed value.dump → p ∈ value.marked →
      ∃ held, jsonAt p value.dump = some held
  | _, .plain value, p, _, hp => by simp [Value.marked] at hp
  | _, @Value.annotated inner outer value, p, hvalue, hp => by
    rw [Value.marked, List.mem_append] at hp
    rcases hp with hp | hp
    · obtain rfl : p = [] := by
        split at hp
        · exact List.mem_singleton.1 hp
        · cases hp
      exact ⟨_, rfl⟩
    · exact @jsonAt_of_marked _ value _ hvalue hp
  | _, .model values, p, hvalue, hp => jsonAt_of_marked_fields hvalue.1 hvalue.2 hp
  | _, .left value, p, hvalue, hp => @jsonAt_of_marked _ value _ hvalue hp
  | _, .right value, p, hvalue, hp => @jsonAt_of_marked _ value _ hvalue hp
  | _, .list items, p, hvalue, hp => by
    obtain ⟨i, path, rfl, hheld⟩ := @jsonAt_of_marked_items _ items _ _ hvalue hp
    rw [Nat.zero_add]
    exact hheld
theorem jsonAt_of_marked_fields : ∀ {fields : List (String × FieldType)} {values : Values fields}
    {p : List JsonStep}, (values.dump.map Prod.fst).Nodup → WellFormedFields values.dump →
      p ∈ values.marked → ∃ held, jsonAt p (.obj values.dump) = some held
  | _, .nil, p, _, _, hp => by simp [Values.marked] at hp
  | _, @Values.cons field fieldType fields value values, p, hnew, hvalues, hp => by
    obtain ⟨hfield, hnew⟩ := List.nodup_cons.1 hnew
    rw [Values.marked, List.mem_append, List.mem_map] at hp
    rcases hp with ⟨path, hp, rfl⟩ | hp
    · obtain ⟨held, hheld⟩ := jsonAt_of_marked hvalues.1 hp
      exact ⟨held, by simpa [jsonAt, Values.dump, lookup] using hheld⟩
    · obtain ⟨held, hheld⟩ := jsonAt_of_marked_fields hnew hvalues.2 hp
      obtain ⟨name, hname, path, rfl⟩ := exists_of_mem_marked hp
      have hne : field ≠ name := by
        rintro rfl
        exact hfield (map_fst_dump ▸ hname)
      exact ⟨held, by simpa [jsonAt, Values.dump, lookup, hne] using hheld⟩
theorem jsonAt_of_marked_items : ∀ {item : FieldType} {items : Items item} {p : List JsonStep}
    {n : ℕ}, WellFormedItems items.dump → p ∈ items.marked n →
      ∃ i path, p = .index (n + i) :: path ∧
        ∃ held, jsonAt (.index i :: path) (.arr items.dump) = some held
  | _, .nil, p, n, _, hp => by simp [Items.marked] at hp
  | _, .cons value items, p, n, hitems, hp => by
    rw [Items.marked, List.mem_append, List.mem_map] at hp
    rcases hp with ⟨path, hp, rfl⟩ | hp
    · exact ⟨0, path, rfl, jsonAt_of_marked hitems.1 hp⟩
    · obtain ⟨i, path, rfl, hheld⟩ := jsonAt_of_marked_items hitems.2 hp
      exact ⟨i + 1, path, by rw [Nat.add_right_comm, Nat.add_assoc], hheld⟩
end

end Stored

/-- The event is an instance of a class: the registry has seen the annotations of its
fields, and its dump is the one of their values. -/
structure InstanceOf {fields : List (String × FieldType)} (values : Values fields)
    (event : EventInstance) : Prop where
  hints : event.type.hints = FieldType.hints fields
  dump : event.dump = values.dump

/-- A path inside an encrypted field, which holds what encryption made of its value. -/
def Covered {K : Type} (encryption : Encryption K) (event : EventInstance) (streamId : StreamId)
    (raw : Dict) (p : List JsonStep) : Prop :=
  ∃ f ∈ encryptedFields event.type, (parts f.1).map .key <+: p ∧
    ∃ subjectId key value text,
      EncryptedAs encryption event streamId f.1 event.dump raw subjectId key value text

section Marked
variable {K : Type} {encryption : Encryption K} {event : EventInstance} {streamId : StreamId}
  {fields : List (String × FieldType)} {values : Values fields} {raw : Dict}

theorem InstanceOf.mem_fieldPaths (hinstance : InstanceOf values event) {q : List String} :
    q ∈ FieldType.fieldPaths fields ↔ ∃ f ∈ encryptedFields event.type, parts f.1 = q := by
  have hnamed := event.type.wellNamed
  rw [hinstance.hints] at hnamed
  rw [← map_parts_getEncryptedFields hnamed, encryptedFields, hinstance.hints, List.mem_map]

theorem InstanceOf.covers_iff (hinstance : InstanceOf values event) {p : List JsonStep} :
    Covers (FieldType.fieldPaths fields) p ↔
      ∃ f ∈ encryptedFields event.type, (parts f.1).map .key <+: p := by
  simp only [Covers, hinstance.mem_fieldPaths, exists_exists_and_eq_and]

/-- In what encryption produces, every marked value is covered by an encrypted field if and
only if the event is direct. A marked value that is not covered stands there in clear. -/
theorem marked_covered_iff (hinstance : InstanceOf values event)
    (h : encryption.encrypt event streamId = .ok raw) :
    ((∀ p ∈ values.marked, Covered encryption event streamId raw p) ↔ values.direct) ∧
      ∀ p ∈ values.marked, ¬ Covered encryption event streamId raw p →
        ∃ value, jsonAt p (.obj event.dump) = some value ∧
          jsonAt p (.obj raw) = some value := by
  obtain ⟨-, hfields⟩ := encrypt_eq_ok.1 h
  have hencrypted := encryptedAs_of_encryptFields (apart_encryptedFields event.type) hfields
  have hcovered : ∀ p, Covered encryption event streamId raw p ↔
      Covers (FieldType.fieldPaths fields) p := by
    intro p
    rw [hinstance.covers_iff]
    exact exists_congr fun f => and_congr_right fun hf => and_iff_left (hencrypted f hf)
  have hnamed := event.type.wellNamed
  rw [hinstance.hints] at hnamed
  simp only [hcovered]
  refine ⟨covers_fields_iff values hnamed, fun p hp hclear => ?_⟩
  have hdump := event.wellFormed
  rw [hinstance.dump] at hdump
  obtain ⟨value, hvalue⟩ := jsonAt_of_marked_fields hdump.1 hdump.2 hp
  rw [← hinstance.dump] at hvalue
  refine ⟨value, hvalue, ?_⟩
  rw [hinstance.covers_iff] at hclear
  rw [jsonAt_encryptFields (fun f hf hinside => hclear ⟨f, hf, hinside⟩) _ hfields, hvalue]
  intro f hf houtside
  exact hclear ⟨f, hf,
    prefix_of_marked_fields hnamed hp (hinstance.mem_fieldPaths.2 ⟨f, hf, rfl⟩) houtside⟩

end Marked

section Example

def encryptedText : FieldType :=
  .annotated .plain [.encrypted { maskValue := .str "[REDACTED]" }]

/-- A class with an address that may be missing, and its street is marked. -/
def shipment : List (String × FieldType) :=
  [("customer", .annotated .plain [.dataSubject]), ("note", encryptedText),
    ("address", .union (.model [("street", encryptedText)]) .plain)]

def shipmentWith (address : Value (.union (.model [("street", encryptedText)]) .plain)) :
    Values shipment :=
  .cons (.annotated (.plain (.str "Ann"))) (.cons (.annotated (.plain (.str "fragile")))
    (.cons address .nil))

def shipmentType : EventType where
  hints := FieldType.hints shipment
  modelFields := [("customer", [.dataSubject]), ("note", [.other]), ("address", [])]
  wellNamed := by decide

/-- A shipment without an address. -/
def unaddressed : EventInstance where
  type := shipmentType
  dump := (shipmentWith (.right (.plain .null))).dump
  getattr name := if name = "customer" then .ok (.json (.str "Ann")) else .error .attributeError
  wellFormed := by
    simp [shipmentWith, shipment, Value.dump, Values.dump, WellFormed, WellFormedFields]

def addressed : EventInstance where
  type := shipmentType
  dump := (shipmentWith (.left (.model (.cons (.annotated (.plain (.str "Main St"))) .nil)))).dump
  getattr name := if name = "customer" then .ok (.json (.str "Ann")) else .error .attributeError
  wellFormed := by
    simp [shipmentWith, shipment, Value.dump, Values.dump, WellFormed, WellFormedFields]

theorem marked_covered_iff_unaddressed :
    ∃ raw, annsKey.encrypt unaddressed { uuid := 1 } = .ok raw ∧
      ((∀ p ∈ (shipmentWith (.right (.plain .null))).marked,
        Covered annsKey unaddressed { uuid := 1 } raw p) ↔
          (shipmentWith (.right (.plain .null))).direct) :=
  ⟨_, rfl, (marked_covered_iff ⟨rfl, rfl⟩ rfl).1⟩

/-- The street of an address is stored in clear. -/
theorem marked_stored_clear :
    InstanceOf (shipmentWith (.left (.model (.cons (.annotated (.plain (.str "Main St"))) .nil))))
        addressed ∧
      ∃ raw, annsKey.encrypt addressed { uuid := 1 } = .ok raw ∧
        [.key "address", .key "street"] ∈ (shipmentWith
          (.left (.model (.cons (.annotated (.plain (.str "Main St"))) .nil)))).marked ∧
        jsonAt [.key "address", .key "street"] (.obj raw) = some (.str "Main St") ∧
        ¬ Covered annsKey addressed { uuid := 1 } raw [.key "address", .key "street"] := by
  refine ⟨⟨rfl, rfl⟩, _, rfl, by decide, rfl, ?_⟩
  rintro ⟨f, hf, hinside, -⟩
  obtain rfl := List.mem_singleton.1 hf
  simp [parts_of_undotted] at hinside

end Example

end EventSourcery
